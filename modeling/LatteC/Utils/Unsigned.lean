import LatteC.Sds.Number
import LatteC.Sds.Split
import LatteC.Utils.InPlace

/-!
# Unsigned numerals, byte by byte

`ull2string` and `string2ull` of `src/utils/utils.c`.

`ull2string` stores all digits first and then looks whether they fit, and it does not count the NUL. So a
buffer that is too small is written past its end, by one byte if only the NUL does not fit, and where
`ll2string` returns `0`.

`string2ull` asks `string2ll` first, and refuses negative numbers there. What is no numeral of a signed number
goes to `strtoull`, which skips white space, takes a sign and negates modulo 2⁶⁴.

## Modelling

`strtoull` is the one of the C standard, for base 10: the value, the rest of the string and whether `errno` is
`ERANGE`. A string without digits is not converted, and then the rest is all of it.
-/

namespace LatteC

open Decimal

namespace InPlace

/-! ## Writing -/

/-- `ull2string`: the buffer and the length. -/
def ull2string (s : List UInt8) (len v : ℕ) : Option (List UInt8 × ℕ) := do
  let (s, l) ← sdsDigits s 0 v
  if len < l then some (s, 0)
  else sdsReverse s l

/-- A buffer that is too small for the digits. -/
theorem sdsDigits_eq_none {v : ℕ} {s : List UInt8} {p : ℕ} (h : s.length < p + (natNumeral v).length) :
    sdsDigits s p v = none := by
  induction v using Nat.strongRecOn generalizing s p with
  | ind v ih =>
    rw [sdsDigits]
    by_cases hfit : p + 1 ≤ s.length
    · obtain ⟨s', hwrite, hlength, -⟩ := Block.write_of_le
        (show p + [digitChar (v % 10)].length ≤ s.length from hfit)
      have hbig : 10 ≤ v := by
        by_contra hsmall
        rw [natNumeral_of_lt (not_le.mp hsmall), List.length_singleton] at h
        omega
      rw [natNumeral_of_le hbig, List.length_append, List.length_singleton] at h
      rw [hwrite, Option.bind_some, if_neg (by omega)]
      exact ih (v / 10) (by omega) (by omega)
    · have hnone : Block.write s p [digitChar (v % 10)] = none := if_neg hfit
      rw [hnone, Option.bind_none]

/-- **Writing** into a buffer with room for the digits and the NUL. -/
theorem ull2string_eq {s : List UInt8} {len v : ℕ} (hlen : (natNumeral v).length < len) (hs : len ≤ s.length) :
    ull2string s len v =
      some (natNumeral v ++ 0 :: s.drop ((natNumeral v).length + 1), (natNumeral v).length) := by
  obtain ⟨X, y, C, rfl, hX, hC⟩ := exists_append_cons (show (natNumeral v).length < s.length by omega)
  rw [ull2string, sdsDigits_zero hX, hC]
  simp only [bind, Option.bind_some]
  rw [if_neg (by omega)]
  exact sdsReverse_reverse _ y C

/-- A buffer without room for the digits and the NUL is written past its end. -/
theorem ull2string_eq_none {s : List UInt8} {v : ℕ} (h : s.length ≤ (natNumeral v).length) :
    ull2string s s.length v = none := by
  rw [ull2string]
  obtain hlt | heq := h.lt_or_eq
  · rw [sdsDigits_eq_none (by omega)]
    rfl
  · -- the digits fit, and the NUL does not
    have hdigits := sdsDigits_zero heq []
    rw [List.append_nil, List.append_nil] at hdigits
    have hnul : Block.write (natNumeral v).reverse (natNumeral v).length [0] = none := by
      rw [Block.write, if_neg (by rw [List.length_reverse, List.length_singleton]; omega)]
    rw [hdigits]
    simp only [bind, Option.bind_some]
    rw [if_neg (by omega), sdsReverse, hnul]
    rfl

/-- `ull2string` on a buffer of this length: it stays inside, returns `0` if there is no room for the digits
and a NUL and otherwise stores them, and does what `ll2string` does with a signed number. -/
def WritesInside (len v : ℕ) : Prop :=
  ∀ s : List UInt8, s.length = len → ∃ s' r, ull2string s len v = some (s', r) ∧
    (len ≤ (natNumeral v).length → r = 0) ∧
    ((natNumeral v).length < len →
      r = (natNumeral v).length ∧ s' = natNumeral v ++ 0 :: s.drop ((natNumeral v).length + 1)) ∧
    (v ≤ 2 ^ 63 - 1 → ll2string s len v = some (s', r))

/-- **Writing** is right if and only if the digits and the NUL fit. -/
theorem writesInside_iff (len v : ℕ) : WritesInside len v ↔ (natNumeral v).length < len := by
  constructor
  · intro h
    by_contra hlen
    obtain ⟨s', r, hwrite, -⟩ := h (List.replicate len 0) List.length_replicate
    have hnone := ull2string_eq_none (s := List.replicate len 0) (v := v)
      (by rw [List.length_replicate]; exact not_lt.mp hlen)
    rw [List.length_replicate, hwrite] at hnone
    cases hnone
  · rintro hlen s rfl
    refine ⟨_, _, ull2string_eq hlen (le_refl _), fun h ↦ absurd h (not_le.mpr hlen), fun _ ↦ ⟨rfl, rfl⟩,
      fun hv ↦ ?_⟩
    have hint : IsInt64 v := ⟨by omega, by omega⟩
    have hnumeral : numeral v = natNumeral v := by
      rw [numeral, if_neg (by omega), Int.natAbs_natCast]
    have hsdigits : sdigits10 v = (natNumeral v).length := by rw [sdigits10_eq hint, hnumeral]
    have hwrite := @ll2string_eq _ hint s s.length (by omega) (by omega)
    rwa [hsdigits, hnumeral] at hwrite

end InPlace

/-! ## Reading -/

/-- What is behind the white space and the sign. -/
def strtoullDigits (s : List UInt8) : List UInt8 :=
  let p := s.dropWhile isspace
  if p.head? = some 45 ∨ p.head? = some 43 then p.tail else p

/-- `strtoull` in base 10: the value, the rest of the string, and whether it is out of range. -/
def strtoull (s : List UInt8) : ℕ × List UInt8 × Bool :=
  let p := strtoullDigits s
  let ds := p.takeWhile (IsDigit ·)
  if ds = [] then (0, s, false)
  else if 2 ^ 64 ≤ digitsValue ds then (2 ^ 64 - 1, p.dropWhile (IsDigit ·), true)
  else if (s.dropWhile isspace).head? = some 45 then
    ((2 ^ 64 - digitsValue ds) % 2 ^ 64, p.dropWhile (IsDigit ·), false)
  else (digitsValue ds, p.dropWhile (IsDigit ·), false)

/-- `string2ull`: the number, if it is one. -/
def InPlace.string2ull (s : List UInt8) : Option ℕ :=
  let s := cString s
  match LatteC.string2ll s with
  | some ll => if ll < 0 then none else some ll.toNat
  | none =>
    let (value, rest, erange) := strtoull s
    if erange ∨ s = [] ∨ rest ≠ [] then none else some value

/-- White space, a sign and digits, which denote the number. -/
def Spells (s sign : List UInt8) (n : ℕ) : Prop :=
  ∃ ws ds, s = ws ++ sign ++ ds ∧ (∀ c ∈ ws, isspace c = true) ∧ ds ≠ [] ∧ (∀ c ∈ ds, IsDigit c) ∧
    digitsValue ds = n

/-- No sign, or one of the two. -/
def IsSign (sign : List UInt8) : Prop := sign = [] ∨ sign = [43] ∨ sign = [45]

section Strtoull

variable {s sign : List UInt8} {n : ℕ}

theorem dropWhile_space {ws p : List UInt8} (hws : ∀ c ∈ ws, isspace c = true)
    (hp : ∀ c, p.head? = some c → isspace c = false) : (ws ++ p).dropWhile isspace = p := by
  rw [List.dropWhile_append_of_pos hws]
  cases p with
  | nil => rfl
  | cons c p => exact List.dropWhile_cons_of_neg (by rw [hp c rfl]; exact Bool.false_ne_true)

/-- The sign and the digits are no white space. -/
theorem dropWhile_spells (hsign : IsSign sign) {ws ds : List UInt8} (hws : ∀ c ∈ ws, isspace c = true)
    (hds : ∀ c ∈ ds, IsDigit c) : (ws ++ sign ++ ds).dropWhile isspace = sign ++ ds := by
  rw [List.append_assoc]
  refine dropWhile_space hws fun c hc ↦ ?_
  obtain rfl | rfl | rfl := hsign
  · exact isspace_of_isDigit (hds c (List.mem_of_head? hc))
  · obtain rfl : 43 = c := Option.some.inj hc
    decide
  · obtain rfl : 45 = c := Option.some.inj hc
    decide

theorem strtoullDigits_spells (hsign : IsSign sign) {ws ds : List UInt8} (hws : ∀ c ∈ ws, isspace c = true)
    (hds : ∀ c ∈ ds, IsDigit c) : strtoullDigits (ws ++ sign ++ ds) = ds := by
  rw [strtoullDigits]
  simp only [dropWhile_spells hsign hws hds]
  obtain rfl | rfl | rfl := hsign
  · refine if_neg fun hhead ↦ ?_
    obtain hhead | hhead := hhead
    · exact absurd (hds 45 (List.mem_of_head? hhead)) (by decide)
    · exact absurd (hds 43 (List.mem_of_head? hhead)) (by decide)
  · exact if_pos (Or.inr rfl)
  · exact if_pos (Or.inl rfl)

/-- **`strtoull`** on a whole number. -/
theorem strtoull_of_spells (hsign : IsSign sign) (h : Spells s sign n) :
    strtoull s =
      if 2 ^ 64 ≤ n then (2 ^ 64 - 1, [], true)
      else (if sign = [45] then (2 ^ 64 - n) % 2 ^ 64 else n, [], false) := by
  obtain ⟨ws, ds, rfl, hws, hne, hds, rfl⟩ := h
  have htake : ds.takeWhile (IsDigit ·) = ds :=
    List.takeWhile_eq_self_iff.mpr fun c hc ↦ decide_eq_true (hds c hc)
  have hdrop : ds.dropWhile (IsDigit ·) = [] :=
    List.dropWhile_eq_nil_iff.mpr fun c hc ↦ decide_eq_true (hds c hc)
  have hminus : (sign ++ ds).head? = some 45 ↔ sign = [45] := by
    obtain rfl | rfl | rfl := hsign
    · refine iff_of_false (fun hhead ↦ ?_) (by decide)
      exact absurd (hds 45 (List.mem_of_head? hhead)) (by decide)
    · exact iff_of_false (by simp) (by decide)
    · exact iff_of_true rfl rfl
  rw [strtoull, strtoullDigits_spells hsign hws hds, dropWhile_spells hsign hws hds]
  simp only [htake, hdrop, if_neg hne, hminus]
  split_ifs <;> rfl

/-- If something is read and nothing is left, it was a whole number. -/
theorem spells_of_strtoull (hs : s ≠ []) (h : (strtoull s).2.1 = []) :
    ∃ sign n, IsSign sign ∧ Spells s sign n := by
  have hws : ∀ c ∈ s.takeWhile isspace, isspace c = true := fun c hc ↦ List.mem_takeWhile_imp hc
  have hsplit : s.takeWhile isspace ++ s.dropWhile isspace = s := List.takeWhile_append_dropWhile
  -- the sign is what `strtoullDigits` takes off
  have hsigned : ∃ sign, IsSign sign ∧ s.dropWhile isspace = sign ++ strtoullDigits s := by
    rw [strtoullDigits]
    split_ifs with hhead
    · obtain hhead | hhead := hhead
      · exact ⟨[45], Or.inr (Or.inr rfl), List.eq_cons_of_mem_head? hhead⟩
      · exact ⟨[43], Or.inr (Or.inl rfl), List.eq_cons_of_mem_head? hhead⟩
    · exact ⟨[], Or.inl rfl, rfl⟩
  obtain ⟨sign, hsign, hrest⟩ := hsigned
  rw [strtoull] at h
  by_cases hne : (strtoullDigits s).takeWhile (IsDigit ·) = []
  · simp only [if_pos hne] at h
    exact absurd h hs
  · have hdrop : (strtoullDigits s).dropWhile (IsDigit ·) = [] := by
      simp only [if_neg hne] at h
      split_ifs at h <;> exact h
    have htake : (strtoullDigits s).takeWhile (IsDigit ·) = strtoullDigits s := by
      rw [List.dropWhile_eq_nil_iff] at hdrop
      exact List.takeWhile_eq_self_iff.mpr hdrop
    refine ⟨sign, _, hsign, s.takeWhile isspace, strtoullDigits s, ?_, hws, by rwa [htake] at hne, ?_, rfl⟩
    · rw [List.append_assoc, ← hrest, hsplit]
    · rw [List.dropWhile_eq_nil_iff] at hdrop
      exact fun c hc ↦ of_decide_eq_true (hdrop c hc)

end Strtoull

/-- What is accepted has no minus sign, and is the number that it spells. -/
def ReadsUnsigned (s : List UInt8) : Prop :=
  ∀ v, InPlace.string2ull s = some v →
    45 ∉ cString s ∧ v < 2 ^ 64 ∧ ∃ sign, (sign = [] ∨ sign = [43]) ∧ Spells (cString s) sign v

/-- A minus sign that `string2ll` does not see. -/
def IsHiddenMinus (s : List UInt8) : Prop :=
  (∃ n < 2 ^ 64, Spells (cString s) [45] n) ∧ ∀ v, IsInt64 v → cString s ≠ numeral v

section Reads

variable {s : List UInt8} {n : ℕ}

theorem minus_notMem_of_spells {sign : List UInt8} (hsign : sign = [] ∨ sign = [43]) (h : Spells s sign n) :
    45 ∉ s := by
  obtain ⟨ws, ds, rfl, hws, -, hds, -⟩ := h
  rw [List.mem_append, List.mem_append]
  rintro ((hmem | hmem) | hmem)
  · exact absurd (hws 45 hmem) (by decide)
  · obtain rfl | rfl := hsign
    · exact absurd hmem List.not_mem_nil
    · exact absurd (List.mem_singleton.mp hmem) (by decide)
  · exact absurd (hds 45 hmem) (by decide)

theorem minus_mem_of_spells (h : Spells s [45] n) : 45 ∈ s := by
  obtain ⟨ws, ds, rfl, -⟩ := h
  simp

/-- A numeral is spelled without anything around it. -/
theorem spells_natNumeral (n : ℕ) : Spells (natNumeral n) [] n := by
  obtain ⟨c, cs, hcons, -⟩ := natNumeral_ne_minus n
  refine ⟨[], natNumeral n, rfl, List.forall_mem_nil _, ?_, fun _ hc ↦ isDigit_of_mem_natNumeral hc,
    digitsValue_natNumeral n⟩
  rw [hcons]
  exact List.cons_ne_nil c cs

theorem spells_ne_nil {sign : List UInt8} (h : Spells s sign n) : s ≠ [] := by
  obtain ⟨ws, ds, rfl, -, hne, -⟩ := h
  exact List.append_ne_nil_of_right_ne_nil _ hne

/-- What `strtoull` reads as a whole. -/
theorem string2ull_of_spells {sign : List UInt8} (hsign : IsSign sign) (hnone : string2ll (cString s) = none)
    (h : Spells (cString s) sign n) (hn : n < 2 ^ 64) :
    InPlace.string2ull s = some (if sign = [45] then (2 ^ 64 - n) % 2 ^ 64 else n) := by
  rw [InPlace.string2ull]
  simp only [hnone, strtoull_of_spells hsign h, if_neg (not_le.mpr hn)]
  rw [if_neg]
  rintro (hrange | hnil | hrest)
  · exact Bool.false_ne_true hrange
  · exact spells_ne_nil h hnil
  · exact hrest rfl

/-- **There and back.** -/
theorem string2ull_natNumeral {v : ℕ} (h : v < 2 ^ 64) : InPlace.string2ull (natNumeral v) = some v := by
  have hcString : cString (natNumeral v) = natNumeral v :=
    cString_eq_self fun hmem ↦ absurd (isDigit_of_mem_natNumeral hmem) (by decide)
  have hspells := spells_natNumeral v
  cases hsigned : string2ll (natNumeral v) with
  | none =>
    rw [← hcString] at hsigned hspells
    exact string2ull_of_spells (Or.inl rfl) hsigned hspells h
  | some ll =>
    -- a numeral of a signed number without a minus sign
    obtain ⟨-, hnumeral⟩ := (string2ll_eq_some_iff _ ll).mp hsigned
    have hneg : ¬ll < 0 := by
      intro hneg
      rw [numeral, if_pos hneg] at hnumeral
      refine minus_notMem_of_spells (Or.inl rfl) hspells ?_
      rw [hnumeral]
      exact List.mem_cons_self
    have hvalue : v = ll.toNat := by
      have hdigits := congrArg value hnumeral
      rw [value_numeral, ← Int.natAbs_natCast v] at hdigits
      have hpos : natNumeral (v : ℤ).natAbs = numeral v := by rw [numeral, if_neg (by omega)]
      rw [hpos, value_numeral] at hdigits
      omega
    rw [InPlace.string2ull, hcString]
    simp only [hsigned, if_neg hneg]
    rw [hvalue]

/-- **Reading** is right if and only if there is no minus sign that `string2ll` does not see. -/
theorem readsUnsigned_iff (s : List UInt8) : ReadsUnsigned s ↔ ¬IsHiddenMinus s := by
  constructor
  · rintro h ⟨⟨n, hn, hspells⟩, hnumeral⟩
    have hnone : string2ll (cString s) = none := by
      rw [Option.eq_none_iff_forall_ne_some]
      intro v hv
      obtain ⟨hint, heq⟩ := (string2ll_eq_some_iff _ v).mp hv
      exact hnumeral v hint heq
    have hread := string2ull_of_spells (Or.inr (Or.inr rfl)) hnone hspells hn
    exact (h _ hread).1 (minus_mem_of_spells hspells)
  · intro h v hv
    have hspelled : v < 2 ^ 64 ∧ ∃ sign, (sign = [] ∨ sign = [43]) ∧ Spells (cString s) sign v := by
      rw [InPlace.string2ull] at hv
      cases hsigned : string2ll (cString s) with
      | some ll =>
        simp only [hsigned] at hv
        split_ifs at hv with hneg
        obtain ⟨hint, hnumeral⟩ := (string2ll_eq_some_iff _ ll).mp hsigned
        obtain rfl := Option.some.inj hv
        have hupper := hint.2
        have habs : ll.natAbs = ll.toNat := by omega
        rw [numeral, if_neg hneg, habs] at hnumeral
        exact ⟨by omega, [], Or.inl rfl, hnumeral ▸ spells_natNumeral _⟩
      | none =>
        simp only [hsigned] at hv
        split_ifs at hv with hrejected
        rw [not_or, not_or, not_not] at hrejected
        obtain ⟨hrange, hne, hrest⟩ := hrejected
        obtain ⟨sign, n, hsign, hspells⟩ := spells_of_strtoull hne hrest
        have hvalue := strtoull_of_spells hsign hspells
        have hn : ¬2 ^ 64 ≤ n := by
          intro hn
          rw [if_pos hn] at hvalue
          exact hrange (congrArg (fun r ↦ r.2.2) hvalue)
        rw [if_neg hn] at hvalue
        rw [hvalue] at hv
        obtain rfl | rfl | rfl := hsign
        · obtain rfl := Option.some.inj hv
          exact ⟨not_le.mp hn, [], Or.inl rfl, hspells⟩
        · obtain rfl := Option.some.inj hv
          exact ⟨not_le.mp hn, [43], Or.inr rfl, hspells⟩
        · refine absurd ⟨⟨n, not_le.mp hn, hspells⟩, fun w hw heq ↦ ?_⟩ h
          rw [(string2ll_eq_some_iff _ w).mpr ⟨hw, heq⟩] at hsigned
          cases hsigned
    obtain ⟨hlt, sign, hsign, hspells⟩ := hspelled
    exact ⟨minus_notMem_of_spells hsign hspells, hlt, sign, hsign, hspells⟩

end Reads

/-- **Unsigned numbers.** Writing is right if and only if the digits and the NUL fit, reading is right if and
only if there is no minus sign that `string2ll` does not see, and reading what was written gives the number. -/
theorem ull2string_string2ull (len v : ℕ) (s : List UInt8) :
    (InPlace.WritesInside len v ↔ (natNumeral v).length < len) ∧
      (ReadsUnsigned s ↔ ¬IsHiddenMinus s) ∧ (v < 2 ^ 64 → InPlace.string2ull (natNumeral v) = some v) :=
  ⟨InPlace.writesInside_iff len v, readsUnsigned_iff s, string2ull_natNumeral⟩

/-- The least number that needs `strtoull`. -/
theorem ull2string_string2ull_large : InPlace.string2ull (natNumeral (2 ^ 63)) = some (2 ^ 63) :=
  (ull2string_string2ull 0 (2 ^ 63) []).2.2 (by decide)

/-- Five digits in a buffer of five bytes, and `"-0"`. -/
theorem not_writesInside_exact : ¬InPlace.WritesInside 5 12345 ∧ ¬ReadsUnsigned [45, 48] := by
  constructor
  · intro h
    obtain ⟨s', r, hwrite, -⟩ := h [1, 1, 1, 1, 1] rfl
    have hnone : InPlace.ull2string [1, 1, 1, 1, 1] 5 12345 = none :=
      InPlace.ull2string_eq_none (s := [1, 1, 1, 1, 1]) (by decide)
    rw [hnone] at hwrite
    cases hwrite
  · intro h
    have hread : InPlace.string2ull [45, 48] = some 0 := by decide
    exact (h 0 hread).1 (by decide)

end LatteC
