import LatteC.Foundation.Base128
import LatteC.Foundation.Block
import LatteC.Sds.Basic

/-!
# Numbers of variable width

The varints of `src/sds/sds_plugins.c`. The encoder of 32 bits has a branch for every length and that of 64 bits
a loop; both write the number in base 128. A reader looks at a slice, which is a pointer into a block and a
length of type `int`.
-/

namespace LatteC

open Base128 Bits

/-! ## Writing -/

/-- `encode_var_int32`: the bytes that are written to `dst`. -/
def encodeVarInt32 (v : UInt32) : List UInt8 :=
  let B : UInt32 := 128
  if v < (1 : UInt32) <<< 7 then [v.toUInt8]
  else if v < (1 : UInt32) <<< 14 then [(v ||| B).toUInt8, (v >>> 7).toUInt8]
  else if v < (1 : UInt32) <<< 21 then [(v ||| B).toUInt8, (v >>> 7 ||| B).toUInt8, (v >>> 14).toUInt8]
  else if v < (1 : UInt32) <<< 28 then
    [(v ||| B).toUInt8, (v >>> 7 ||| B).toUInt8, (v >>> 14 ||| B).toUInt8, (v >>> 21).toUInt8]
  else
    [(v ||| B).toUInt8, (v >>> 7 ||| B).toUInt8, (v >>> 14 ||| B).toUInt8, (v >>> 21 ||| B).toUInt8,
      (v >>> 28).toUInt8]

/-- `encode_var_int64`, into a buffer of `room` bytes. -/
def encodeVarInt64 : (room : ℕ) → (v : UInt64) → Option (List UInt8)
  | 0, _ => none
  | room + 1, v =>
    if 128 ≤ v then (encodeVarInt64 room (v >>> 7)).map ((v ||| 128).toUInt8 :: ·)
    else some [v.toUInt8]

/-- `sds_append_var_int32`. -/
def sdsAppendVarInt32 (result : List UInt8) (v : UInt32) : Option (List UInt8) :=
  (Block.write (List.replicate 5 0) 0 (encodeVarInt32 v)).bind fun buf ↦
    sdsCatLen result (buf.take (encodeVarInt32 v).length)

/-- `sds_append_var_int64`. -/
def sdsAppendVarInt64 (result : List UInt8) (v : UInt64) : Option (List UInt8) :=
  (encodeVarInt64 10 v).bind (sdsCatLen result)

theorem toNat_shiftRight_seven (v : UInt64) : (v >>> 7).toNat = v.toNat / 128 := by
  rw [UInt64.toNat_shiftRight]
  exact Nat.shiftRight_eq_div_pow v.toNat 7

theorem shiftRight_seven_lt {v : UInt64} (h : 128 ≤ v) : (v >>> 7).toNat < v.toNat := by
  have hle : 128 ≤ v.toNat := UInt64.le_iff_toNat_le.mp h
  rw [toNat_shiftRight_seven]
  omega

/-- The loop of `var_int_length`. -/
def varIntLengthLoop (v : UInt64) (len : ℕ) : ℕ :=
  if 128 ≤ v then varIntLengthLoop (v >>> 7) (len + 1) else len
termination_by v.toNat
decreasing_by exact shiftRight_seven_lt ‹_›

/-- `var_int_length`. -/
def varIntLength (v : UInt64) : ℕ := varIntLengthLoop v 1

/-! ## Reading -/

/-- `slice_t`, with a pointer into a block. -/
structure SlicePtr where
  p : ℕ
  len : Int32
  deriving DecidableEq

/-- The loops of `get_var_int32_ptr_fallback` and `get_var_int64_ptr`: numbers of `w` bits, and shifts up to
`last`. Nothing is returned for a read outside of the block, and `some none` for NULL. -/
def getVarIntLoop (w last : ℕ) (mem : List UInt8) (limit : ℤ) :
    (rounds shift p result : ℕ) → Option (Option (ℕ × ℕ))
  | 0, _, _, _ => some none
  | rounds + 1, shift, p, result =>
    if shift ≤ last ∧ (p : ℤ) < limit then
      mem[p]?.bind fun byte ↦
        if byte &&& 128 ≠ 0 then
          getVarIntLoop w last mem limit rounds (shift + 7) (p + 1)
            (result ||| (byte &&& 127).toNat <<< shift % 2 ^ w)
        else some (some (result ||| byte.toNat <<< shift % 2 ^ w, p + 1))
    else some none

/-- `get_var_int32_ptr_fallback`. A shift of up to 28 allows for five rounds. -/
def getVarInt32PtrFallback (mem : List UInt8) (p : ℕ) (limit : ℤ) : Option (Option (ℕ × ℕ)) :=
  getVarIntLoop 32 28 mem limit 5 0 p 0

/-- `get_var_int32_ptr`. -/
def getVarInt32Ptr (mem : List UInt8) (p : ℕ) (limit : ℤ) : Option (Option (ℕ × ℕ)) :=
  if (p : ℤ) < limit then
    mem[p]?.bind fun result ↦
      if result &&& 128 = 0 then some (some (result.toNat, p + 1))
      else getVarInt32PtrFallback mem p limit
  else getVarInt32PtrFallback mem p limit

/-- `get_var_int64_ptr`. A shift of up to 63 allows for ten rounds. -/
def getVarInt64Ptr (mem : List UInt8) (p : ℕ) (limit : ℤ) : Option (Option (ℕ × ℕ)) :=
  getVarIntLoop 64 63 mem limit 10 0 p 0

/-- The end of `get_var_int32` and of `get_var_int64`: the value returned, the slice and what `v` points to. -/
def SlicePtr.advance (slice : SlicePtr) (v : ℕ) : Option (ℕ × ℕ) → Bool × SlicePtr × ℕ
  | none => (false, slice, v)
  | some (value, q) => (true, ⟨q, .ofInt (slice.len.toInt - ((q : ℤ) - slice.p))⟩, value)

/-- `get_var_int32`. -/
def getVarInt32 (mem : List UInt8) (slice : SlicePtr) (v : ℕ) : Option (Bool × SlicePtr × ℕ) :=
  (getVarInt32Ptr mem slice.p (slice.p + slice.len.toInt)).map (slice.advance v)

/-- `get_var_int64`. -/
def getVarInt64 (mem : List UInt8) (slice : SlicePtr) (v : ℕ) : Option (Bool × SlicePtr × ℕ) :=
  (getVarInt64Ptr mem slice.p (slice.p + slice.len.toInt)).map (slice.advance v)

/-! ## The encoders write base 128 -/

theorem or_128 : ∀ x < 256, x ||| 128 = x % 128 + 128 := by decide +kernel

theorem or_128_mod (v : ℕ) : (v ||| 128) % 256 = v % 128 + 128 := by
  have hmod : (v ||| 128) % 2 ^ 8 = v % 2 ^ 8 ||| 128 % 2 ^ 8 := Nat.or_mod_two_pow
  have hor := or_128 (v % 256) (Nat.mod_lt v (by decide))
  rw [Nat.mod_mod_of_dvd v (by decide)] at hor
  exact hmod.trans hor

/-- A byte of `encode_var_int32` other than the last. -/
theorem toUInt8_or_128 (v : UInt32) : (v ||| 128).toUInt8 = UInt8.ofNat (v.toNat % 128 + 128) := by
  refine UInt8.toNat_inj.mp ?_
  rw [UInt32.toNat_toUInt8, UInt32.toNat_or, UInt8.toNat_ofNat']
  have h : (v.toNat ||| 128) % 256 = v.toNat % 128 + 128 := or_128_mod v.toNat
  change (v.toNat ||| 128) % 256 = _
  omega

/-- A byte of `encode_var_int64` other than the last. -/
theorem toUInt8_or_128_64 (v : UInt64) : (v ||| 128).toUInt8 = UInt8.ofNat (v.toNat % 128 + 128) := by
  refine UInt8.toNat_inj.mp ?_
  rw [UInt64.toNat_toUInt8, UInt64.toNat_or, UInt8.toNat_ofNat']
  have h : (v.toNat ||| 128) % 256 = v.toNat % 128 + 128 := or_128_mod v.toNat
  change (v.toNat ||| 128) % 256 = _
  omega

theorem toUInt8_eq_ofNat (v : UInt32) : v.toUInt8 = UInt8.ofNat v.toNat :=
  UInt8.toNat_inj.mp (by rw [UInt32.toNat_toUInt8, UInt8.toNat_ofNat'])

/-- **The unrolled encoder** writes base 128. -/
theorem encodeVarInt32_eq (v : UInt32) : encodeVarInt32 v = encode v.toNat := by
  have hshift : ∀ {n : UInt32}, n < 32 → (v >>> n).toNat = v.toNat / 2 ^ n.toNat := by
    intro n hn
    have hlt : n.toNat < 32 := hn
    rw [UInt32.toNat_shiftRight, Nat.mod_eq_of_lt hlt, Nat.shiftRight_eq_div_pow]
  have h7 : (v >>> 7).toNat = v.toNat / 128 := hshift (by decide)
  have h14 : (v >>> 14).toNat = v.toNat / 128 / 128 := by
    rw [Nat.div_div_eq_div_mul]
    exact hshift (by decide)
  have h21 : (v >>> 21).toNat = v.toNat / 128 / 128 / 128 := by
    rw [Nat.div_div_eq_div_mul, Nat.div_div_eq_div_mul]
    exact hshift (by decide)
  have h28 : (v >>> 28).toNat = v.toNat / 128 / 128 / 128 / 128 := by
    rw [Nat.div_div_eq_div_mul, Nat.div_div_eq_div_mul, Nat.div_div_eq_div_mul]
    exact hshift (by decide)
  have hbound : ∀ {n : UInt32} {m : ℕ}, n.toNat = m → (v < n ↔ v.toNat < m) := by
    rintro n m rfl
    exact UInt32.lt_iff_toNat_lt
  have hlt := v.toNat_lt
  have hb7 : v < (1 : UInt32) <<< 7 ↔ v.toNat < 128 := hbound rfl
  have hb14 : v < (1 : UInt32) <<< 14 ↔ v.toNat < 128 * 128 := hbound rfl
  have hb21 : v < (1 : UInt32) <<< 21 ↔ v.toNat < 128 * 128 * 128 := hbound rfl
  have hb28 : v < (1 : UInt32) <<< 28 ↔ v.toNat < 128 * 128 * 128 * 128 := hbound rfl
  rw [encodeVarInt32]
  simp only [toUInt8_or_128]
  simp only [toUInt8_eq_ofNat, h7, h14, h21, h28, hb7, hb14, hb21, hb28]
  generalize v.toNat = n at hlt
  split_ifs with h₁ h₂ h₃ h₄
  · rw [encode_of_lt h₁]
  · rw [encode_of_le (by omega), encode_of_lt (by omega)]
  · rw [encode_of_le (by omega), encode_of_le (by omega), encode_of_lt (by omega)]
  · rw [encode_of_le (by omega), encode_of_le (by omega), encode_of_le (by omega),
      encode_of_lt (by omega)]
  · rw [encode_of_le (by omega), encode_of_le (by omega), encode_of_le (by omega),
      encode_of_le (by omega), encode_of_lt (by omega)]

/-- **The loop** writes base 128, if there is room. -/
theorem encodeVarInt64_eq {room : ℕ} (v : UInt64) (h : v.toNat < 2 ^ (7 * (room + 1))) :
    encodeVarInt64 (room + 1) v = some (encode v.toNat) := by
  induction room generalizing v with
  | zero =>
    have hlt : v.toNat < 128 := h
    have hnot : ¬128 ≤ v := fun hle ↦ absurd (UInt64.le_iff_toNat_le.mp hle) (Nat.not_le.mpr hlt)
    have hbyte : v.toUInt8 = UInt8.ofNat v.toNat :=
      UInt8.toNat_inj.mp (by rw [UInt64.toNat_toUInt8, UInt8.toNat_ofNat'])
    rw [encodeVarInt64, if_neg hnot, encode_of_lt hlt, hbyte]
  | succ room ih =>
    rw [encodeVarInt64]
    split_ifs with hle
    · have hle' : 128 ≤ v.toNat := UInt64.le_iff_toNat_le.mp hle
      have hdiv : (v >>> 7).toNat < 2 ^ (7 * (room + 1)) := by
        rw [toNat_shiftRight_seven]
        refine Nat.div_lt_of_lt_mul ?_
        calc v.toNat < 2 ^ (7 * (room + 1 + 1)) := h
          _ = 2 ^ (7 + 7 * (room + 1)) := by rw [Nat.mul_add_one 7 (room + 1), Nat.add_comm]
          _ = 128 * 2 ^ (7 * (room + 1)) := pow_add 2 7 _
      rw [ih _ hdiv, Option.map_some, toUInt8_or_128_64, toNat_shiftRight_seven, encode_of_le hle']
    · have hlt : v.toNat < 128 := Nat.lt_of_not_le fun h ↦ hle (UInt64.le_iff_toNat_le.mpr h)
      have hbyte : v.toUInt8 = UInt8.ofNat v.toNat :=
        UInt8.toNat_inj.mp (by rw [UInt64.toNat_toUInt8, UInt8.toNat_ofNat'])
      rw [encode_of_lt hlt, hbyte]

theorem varIntLengthLoop_eq (v : UInt64) (len : ℕ) :
    varIntLengthLoop v (len + 1) = len + (encode v.toNat).length := by
  induction h : v.toNat using Nat.strong_induction_on generalizing v len with
  | _ n ih =>
    subst h
    rw [varIntLengthLoop]
    split_ifs with hle
    · have hle' : 128 ≤ v.toNat := UInt64.le_iff_toNat_le.mp hle
      rw [ih _ (shiftRight_seven_lt hle) (v >>> 7) (len + 1) rfl, encode_of_le hle',
        List.length_cons, toNat_shiftRight_seven]
      omega
    · have hlt : v.toNat < 128 := Nat.lt_of_not_le fun h ↦ hle (UInt64.le_iff_toNat_le.mpr h)
      rw [encode_of_lt hlt]
      rfl

theorem varIntLength_eq (v : UInt64) : varIntLength v = (encode v.toNat).length := by
  rw [varIntLength, varIntLengthLoop_eq, Nat.zero_add]

/-! ## The readers -/

section Loop

variable {w n : ℕ} {mem rest : List UInt8} {limit : ℤ} {p : ℕ}

/-- One byte with its eighth bit set. -/
theorem getVarIntLoop_continues {last rounds shift result : ℕ} {b : UInt8} (hb : Continues b)
    (hmem : mem[p]? = some b) (hshift : shift ≤ last) (hlimit : (p : ℤ) < limit) :
    getVarIntLoop w last mem limit (rounds + 1) shift p result =
      getVarIntLoop w last mem limit rounds (shift + 7) (p + 1)
        (result ||| (b &&& 127).toNat <<< shift % 2 ^ w) := by
  rw [getVarIntLoop, if_pos ⟨hshift, hlimit⟩, hmem, Option.bind_some]
  exact if_pos hb

/-- The last byte. -/
theorem getVarIntLoop_ends {last rounds shift result : ℕ} {b : UInt8} (hb : ¬Continues b)
    (hmem : mem[p]? = some b) (hshift : shift ≤ last) (hlimit : (p : ℤ) < limit) :
    getVarIntLoop w last mem limit (rounds + 1) shift p result =
      some (some (result ||| b.toNat <<< shift % 2 ^ w, p + 1)) := by
  rw [getVarIntLoop, if_pos ⟨hshift, hlimit⟩, hmem, Option.bind_some]
  exact if_neg hb

theorem getElem?_of_drop {b : UInt8} {bs : List UInt8} (h : mem.drop p = b :: bs) :
    mem[p]? = some b := by
  rw [← List.head?_drop, h]
  rfl

theorem drop_succ_of_drop {b : UInt8} {bs : List UInt8} (h : mem.drop p = b :: bs) :
    mem.drop (p + 1) = bs := by
  rw [← List.drop_drop, h]
  rfl

theorem toNat_ofNat_last {x : ℕ} (h : x < 128) : (UInt8.ofNat x).toNat = x % 128 := by
  rw [UInt8.toNat_ofNat']
  omega

/-- Seven more bits of a number. -/
theorem mod_or_payload {v i : ℕ} (hv : v < 2 ^ w) :
    v % 2 ^ (7 * i) ||| (v / 2 ^ (7 * i) % 128) <<< (7 * i) % 2 ^ w = v % 2 ^ (7 * (i + 1)) := by
  have hfits : (v / 2 ^ (7 * i) % 128) <<< (7 * i) < 2 ^ w := by
    rw [Nat.shiftLeft_eq]
    calc v / 2 ^ (7 * i) % 128 * 2 ^ (7 * i) ≤ v / 2 ^ (7 * i) * 2 ^ (7 * i) :=
          Nat.mul_le_mul_right _ (Nat.mod_le _ _)
      _ ≤ v := Nat.div_mul_le_self v _
      _ < 2 ^ w := hv
  rw [Nat.mod_eq_of_lt hfits, ← Nat.shiftRight_eq_div_pow]
  exact mod_or_shiftLeft v (7 * i) 7

/-- **The loop reads what has been written.** After `i` rounds the low bits are there, and the block goes on
with the rest of the number. -/
theorem getVarIntLoop_encode {v rounds i : ℕ} (hv : v < 2 ^ w) (hn : v < 2 ^ (7 * (n + 1)))
    (hi : i + rounds = n) (hmem : mem.drop p = encode (v / 2 ^ (7 * i)) ++ rest)
    (hlimit : (p : ℤ) + (encode (v / 2 ^ (7 * i))).length ≤ limit) :
    getVarIntLoop w (7 * n) mem limit (rounds + 1) (7 * i) p (v % 2 ^ (7 * i)) =
      some (some (v, p + (encode (v / 2 ^ (7 * i))).length)) := by
  induction rounds generalizing i p with
  | zero =>
    obtain rfl : i = n := hi
    have hlast : v / 2 ^ (7 * i) < 128 := by
      refine Nat.div_lt_of_lt_mul ?_
      rwa [Nat.mul_add_one, pow_add] at hn
    rw [encode_of_lt hlast] at hmem hlimit ⊢
    have hhigh : v % 2 ^ (7 * (i + 1)) = v := Nat.mod_eq_of_lt hn
    rw [getVarIntLoop_ends (not_continues_ofNat _ hlast) (getElem?_of_drop hmem) le_rfl
      (by rw [List.length_singleton] at hlimit; omega), toNat_ofNat_last hlast, mod_or_payload hv, hhigh]
    rfl
  | succ rounds ih =>
    by_cases hlast : v / 2 ^ (7 * i) < 128
    · have hhigh : v % 2 ^ (7 * (i + 1)) = v := by
        refine Nat.mod_eq_of_lt ?_
        rw [Nat.mul_add_one, pow_add]
        exact ((Nat.div_lt_iff_lt_mul (Nat.two_pow_pos _)).mp hlast).trans_eq (Nat.mul_comm _ _)
      rw [encode_of_lt hlast] at hmem hlimit ⊢
      rw [getVarIntLoop_ends (not_continues_ofNat _ hlast) (getElem?_of_drop hmem) (by omega)
        (by rw [List.length_singleton] at hlimit; omega), toNat_ofNat_last hlast, mod_or_payload hv,
        hhigh]
      rfl
    · have hpow : 2 ^ (7 * (i + 1)) = 2 ^ (7 * i) * 128 := pow_add 2 (7 * i) 7
      have hdiv : v / 2 ^ (7 * i) / 128 = v / 2 ^ (7 * (i + 1)) := by
        rw [Nat.div_div_eq_div_mul, hpow]
      rw [encode_of_le (Nat.not_lt.mp hlast), hdiv] at hmem hlimit ⊢
      rw [List.length_cons] at hlimit ⊢
      have hmod : v / 2 ^ (7 * i) % 128 < 128 := Nat.mod_lt _ (by decide)
      have hstep : getVarIntLoop w (7 * n) mem limit (rounds + 1 + 1) (7 * i) p (v % 2 ^ (7 * i)) =
          getVarIntLoop w (7 * n) mem limit (rounds + 1) (7 * (i + 1)) (p + 1)
            (v % 2 ^ (7 * (i + 1))) := by
        rw [getVarIntLoop_continues (continues_ofNat _ hmod) (getElem?_of_drop hmem) (by omega)
          (by omega), payload_ofNat _ hmod, mod_or_payload hv]
        rfl
      rw [hstep, ih (by omega) (drop_succ_of_drop hmem) (by push_cast at hlimit ⊢; omega),
        Nat.add_assoc, Nat.add_comm 1]

/-- **The loop does not end within a number.** -/
theorem getVarIntLoop_cut {last rounds shift result : ℕ} {q : List UInt8}
    (hq : ∀ b ∈ q, Continues b) (hmem : mem.drop p = q ++ rest) (hlimit : limit = p + q.length) :
    getVarIntLoop w last mem limit rounds shift p result = some none := by
  induction rounds generalizing p shift result q with
  | zero => rfl
  | succ rounds ih =>
    by_cases hshift : shift ≤ last
    · cases q with
      | nil =>
        rw [getVarIntLoop, if_neg]
        rw [List.length_nil] at hlimit
        omega
      | cons b q =>
        rw [List.length_cons] at hlimit
        rw [getVarIntLoop_continues (hq b List.mem_cons_self) (getElem?_of_drop hmem) hshift (by omega)]
        exact ih (fun c hc ↦ hq c (List.mem_cons_of_mem b hc)) (drop_succ_of_drop hmem)
          (by push_cast at hlimit ⊢; omega)
    · rw [getVarIntLoop, if_neg fun h ↦ hshift h.1]

end Loop

/-- The fast path of `get_var_int32_ptr` does what the loop does. -/
theorem getVarInt32Ptr_eq (mem : List UInt8) (p : ℕ) (limit : ℤ) :
    getVarInt32Ptr mem p limit = getVarInt32PtrFallback mem p limit := by
  rw [getVarInt32Ptr]
  split_ifs with hlimit
  · cases hmem : mem[p]? with
    | none =>
      rw [getVarInt32PtrFallback, getVarIntLoop, if_pos ⟨Nat.zero_le _, hlimit⟩, hmem]
      rfl
    | some b =>
      rw [Option.bind_some]
      split_ifs with hb
      · rw [getVarInt32PtrFallback,
          getVarIntLoop_ends (not_not_intro hb) hmem (Nat.zero_le _) hlimit, Nat.zero_or,
          Nat.shiftLeft_zero, Nat.mod_eq_of_lt (b.toNat_lt.trans (by decide))]
      · rfl
  · rfl

/-! ## Slices -/

/-- The slice consists of these bytes. -/
structure SlicePtr.Holds (mem : List UInt8) (slice : SlicePtr) (bytes : List UInt8) : Prop where
  len : slice.len.toInt = bytes.length
  drop : ∃ rest, mem.drop slice.p = bytes ++ rest

/-- The slice behind its first `n` bytes. -/
structure SlicePtr.Advanced (slice : SlicePtr) (n : ℕ) (next : SlicePtr) : Prop where
  p : next.p = slice.p + n
  len : next.len.toInt = slice.len.toInt - n

section Slices

variable {mem s bytes : List UInt8} {slice next : SlicePtr} {v : ℕ}

theorem SlicePtr.Advanced.holds {n : ℕ} (h : slice.Advanced n next) (hs : s.length = n)
    (hslice : slice.Holds mem (s ++ bytes)) : next.Holds mem bytes := by
  obtain ⟨rest, hrest⟩ := hslice.drop
  refine ⟨?_, rest, ?_⟩
  · rw [h.len, hslice.len, List.length_append, hs]
    omega
  · rw [h.p, ← List.drop_drop, hrest, List.append_assoc, List.drop_left' hs]

/-- A reader that has found a number and `n` bytes of it. -/
theorem SlicePtr.advance_some {n value : ℕ} (hn : (n : ℤ) ≤ slice.len.toInt) :
    ∃ next, slice.advance v (some (value, slice.p + n)) = (true, next, value) ∧
      slice.Advanced n next := by
  have hlt := slice.len.toInt_lt
  refine ⟨⟨slice.p + n, .ofInt (slice.len.toInt - n)⟩, ?_, rfl,
    Int32.toInt_ofInt_of_le (by omega) (by omega)⟩
  have hdiff : (((slice.p + n : ℕ) : ℤ) - slice.p) = n := by omega
  rw [SlicePtr.advance, hdiff]

/-- A loop that starts at a slice and finds a number. -/
theorem getVarIntLoop_holds {w n value : ℕ} (hw : value < 2 ^ w) (hn : value < 2 ^ (7 * (n + 1)))
    (h : slice.Holds mem (encode value ++ bytes)) :
    getVarIntLoop w (7 * n) mem (slice.p + slice.len.toInt) (n + 1) 0 slice.p 0 =
      some (some (value, slice.p + (encode value).length)) := by
  obtain ⟨rest, hrest⟩ := h.drop
  have hdiv : value / 2 ^ (7 * 0) = value := Nat.div_one value
  have hmod : value % 2 ^ (7 * 0) = 0 := Nat.mod_one value
  have hmem : mem.drop slice.p = encode (value / 2 ^ (7 * 0)) ++ (bytes ++ rest) := by
    rw [hdiv, hrest, List.append_assoc]
  have hlimit : (slice.p : ℤ) + (encode (value / 2 ^ (7 * 0))).length ≤ slice.p + slice.len.toInt := by
    rw [hdiv, h.len, List.length_append]
    omega
  have hloop := getVarIntLoop_encode hw hn (Nat.zero_add n) hmem hlimit
  rwa [hdiv, hmod] at hloop

theorem SlicePtr.Holds.length_le (h : slice.Holds mem (s ++ bytes)) :
    (s.length : ℤ) ≤ slice.len.toInt := by
  rw [h.len, List.length_append]
  omega

theorem getVarInt32_holds {value : UInt32} (h : slice.Holds mem (encode value.toNat ++ bytes)) :
    ∃ next, getVarInt32 mem slice v = some (true, next, value.toNat) ∧
      slice.Advanced (encode value.toNat).length next := by
  have hlt := value.toNat_lt
  obtain ⟨next, hadvance, hnext⟩ := @SlicePtr.advance_some slice v _ value.toNat h.length_le
  have hloop : getVarIntLoop 32 28 mem (slice.p + slice.len.toInt) 5 0 slice.p 0 =
      some (some (value.toNat, slice.p + (encode value.toNat).length)) :=
    getVarIntLoop_holds (n := 4) hlt (hlt.trans (by decide)) h
  refine ⟨next, ?_, hnext⟩
  rw [getVarInt32, getVarInt32Ptr_eq, getVarInt32PtrFallback, hloop, Option.map_some, hadvance]

theorem getVarInt64_holds {value : UInt64} (h : slice.Holds mem (encode value.toNat ++ bytes)) :
    ∃ next, getVarInt64 mem slice v = some (true, next, value.toNat) ∧
      slice.Advanced (encode value.toNat).length next := by
  have hlt := value.toNat_lt
  obtain ⟨next, hadvance, hnext⟩ := @SlicePtr.advance_some slice v _ value.toNat h.length_le
  have hloop : getVarIntLoop 64 63 mem (slice.p + slice.len.toInt) 10 0 slice.p 0 =
      some (some (value.toNat, slice.p + (encode value.toNat).length)) :=
    getVarIntLoop_holds (n := 9) hlt (hlt.trans (by decide)) h
  refine ⟨next, ?_, hnext⟩
  rw [getVarInt64, getVarInt64Ptr, hloop, Option.map_some, hadvance]

/-- A slice of bytes after each of which a number goes on. -/
theorem getVarInt_cut (h : slice.Holds mem s) (hs : ∀ b ∈ s, Continues b) :
    getVarInt32 mem slice v = some (false, slice, v) ∧
      getVarInt64 mem slice v = some (false, slice, v) := by
  obtain ⟨rest, hrest⟩ := h.drop
  have hloop : ∀ w last rounds, getVarIntLoop w last mem (slice.p + slice.len.toInt) rounds 0 slice.p 0 =
      some none := fun w last rounds ↦ getVarIntLoop_cut hs hrest (by rw [h.len])
  refine ⟨?_, ?_⟩
  · rw [getVarInt32, getVarInt32Ptr_eq, getVarInt32PtrFallback, hloop]
    rfl
  · rw [getVarInt64, getVarInt64Ptr, hloop]
    rfl

end Slices

end LatteC
