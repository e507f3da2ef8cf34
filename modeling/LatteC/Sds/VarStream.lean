import LatteC.Sds.Varint

/-!
# Streams of varints

Numbers of 32 and 64 bits, written one behind the other and read back in the same order.
-/

namespace LatteC

open Base128

/-- A number to write. -/
inductive VarValue where
  | var32 (value : UInt32)
  | var64 (value : UInt64)
  deriving DecidableEq

namespace VarValue

def toNat : VarValue → ℕ
  | var32 value => value.toNat
  | var64 value => value.toNat

/-- `var_int_length` of the number. -/
def length : VarValue → ℕ
  | var32 value => varIntLength value.toUInt64
  | var64 value => varIntLength value

/-- `sds_append_var_int32` or `sds_append_var_int64`. -/
def append (result : List UInt8) : VarValue → Option (List UInt8)
  | var32 value => sdsAppendVarInt32 result value
  | var64 value => sdsAppendVarInt64 result value

/-- `get_var_int32` or `get_var_int64`. -/
def get (mem : List UInt8) (slice : SlicePtr) (v : ℕ) : VarValue → Option (Bool × SlicePtr × ℕ)
  | var32 _ => getVarInt32 mem slice v
  | var64 _ => getVarInt64 mem slice v

end VarValue

/-- The numbers are appended in order. -/
def appendVars : (result : List UInt8) → List VarValue → Option (List UInt8)
  | result, [] => some result
  | result, x :: xs => (x.append result).bind fun result ↦ appendVars result xs

/-- Each read returns its number and moves the slice behind it. -/
def ReadsVars (mem : List UInt8) : SlicePtr → List VarValue → Prop
  | _, [] => True
  | slice, x :: xs => ∀ v, ∃ next, x.get mem slice v = some (true, next, x.toNat) ∧
      slice.Advanced x.length next ∧ ReadsVars mem next xs

/-! ## One number -/

section One

variable {mem s bytes p : List UInt8} {slice : SlicePtr}

theorem sdsAppendVarInt32_eq (result : List UInt8) (v : UInt32) :
    sdsAppendVarInt32 result v = sdsCatLen result (encode v.toNat) := by
  have hlt := v.toNat_lt
  have hlen : (encode v.toNat).length ≤ 5 := length_encode_le (hlt.trans (by decide))
  obtain ⟨buf, hwrite, -, htake⟩ :=
    @Block.write_of_le _ (List.replicate 5 0) (encode v.toNat) 0
      (by rwa [List.length_replicate, Nat.zero_add])
  rw [Nat.zero_add, List.take_zero, List.nil_append] at htake
  rw [sdsAppendVarInt32, encodeVarInt32_eq, hwrite, Option.bind_some, htake]

theorem sdsAppendVarInt64_eq (result : List UInt8) (v : UInt64) :
    sdsAppendVarInt64 result v = sdsCatLen result (encode v.toNat) := by
  have hlt := v.toNat_lt
  have hencode : encodeVarInt64 10 v = some (encode v.toNat) := encodeVarInt64_eq v (hlt.trans (by decide))
  rw [sdsAppendVarInt64, hencode, Option.bind_some]

theorem VarValue.append_eq (result : List UInt8) (x : VarValue) :
    x.append result = sdsCatLen result (encode x.toNat) := by
  cases x with
  | var32 value => exact sdsAppendVarInt32_eq result value
  | var64 value => exact sdsAppendVarInt64_eq result value

theorem VarValue.length_eq (x : VarValue) : x.length = (encode x.toNat).length := by
  cases x with
  | var32 value =>
    have hvalue : value.toUInt64.toNat = value.toNat := UInt32.toNat_toUInt64 value
    rw [VarValue.length, varIntLength_eq, hvalue]
    rfl
  | var64 value => exact varIntLength_eq value

theorem VarValue.get_holds {x : VarValue} (h : slice.Holds mem (encode x.toNat ++ bytes)) (v : ℕ) :
    ∃ next, x.get mem slice v = some (true, next, x.toNat) ∧ slice.Advanced x.length next := by
  rw [x.length_eq]
  cases x with
  | var32 value => exact getVarInt32_holds h
  | var64 value => exact getVarInt64_holds h

/-- A number that is cut off. -/
theorem VarValue.get_cut {x : VarValue} (hp : p <+: encode x.toNat) (hne : p ≠ encode x.toNat)
    (h : slice.Holds mem p) (v : ℕ) : x.get mem slice v = some (false, slice, v) := by
  have hcut := getVarInt_cut (v := v) h (continues_of_isPrefix hp hne)
  cases x with
  | var32 value => exact hcut.1
  | var64 value => exact hcut.2

end One

/-! ## The stream -/

theorem appendVars_eq_some_iff {xs : List VarValue} {s r : List UInt8} (hs : s.length < 2 ^ 63) :
    appendVars s xs = some r ↔
      r = s ++ xs.flatMap (fun x ↦ encode x.toNat) ∧ r.length < 2 ^ 63 := by
  induction xs generalizing s with
  | nil =>
    rw [appendVars, Option.some.injEq, List.flatMap_nil, List.append_nil, eq_comm]
    exact ⟨fun h ↦ ⟨h, h ▸ hs⟩, fun h ↦ h.1⟩
  | cons x xs ih =>
    rw [appendVars, x.append_eq, sdsCatLen, List.flatMap_cons]
    split_ifs with hlen
    · rw [Option.bind_some, ih (by rwa [List.length_append]), List.append_assoc]
    · refine iff_of_false (by simp) ?_
      rintro ⟨rfl, hlt⟩
      simp only [List.length_append] at hlt
      omega

theorem readsVars_of_holds {mem : List UInt8} {xs : List VarValue} {slice : SlicePtr}
    (h : slice.Holds mem (xs.flatMap fun x ↦ encode x.toNat)) : ReadsVars mem slice xs := by
  induction xs generalizing slice with
  | nil => trivial
  | cons x xs ih =>
    intro v
    rw [List.flatMap_cons] at h
    obtain ⟨next, hget, hnext⟩ := VarValue.get_holds h v
    exact ⟨next, hget, hnext, ih (hnext.holds x.length_eq.symm h)⟩

theorem length_flatMap_encode (xs : List VarValue) :
    (xs.flatMap fun x ↦ encode x.toNat).length = (xs.map VarValue.length).sum := by
  rw [List.length_flatMap]
  exact congrArg List.sum (List.map_congr_left fun x _ ↦ x.length_eq.symm)

/-- **Streams of varints** are read back through a slice that has all of them, hence fewer than `2 ^ 31`
bytes, and of a number that is cut off nothing is read. -/
theorem readsVars_appendVars :
    (∀ xs : List VarValue, (xs.map VarValue.length).sum < 2 ^ 63 →
      ∃ r, appendVars [] xs = some r ∧ r.length = (xs.map VarValue.length).sum ∧
        ∀ mem (slice : SlicePtr), slice.Holds mem r → ReadsVars mem slice xs) ∧
    ∀ (x : VarValue) bytes, x.append [] = some bytes → ∀ p, p <+: bytes → p ≠ bytes →
      ∀ mem (slice : SlicePtr), slice.Holds mem p → ∀ v, x.get mem slice v = some (false, slice, v) := by
  refine ⟨fun xs hfits ↦ ?_, fun x bytes hbytes p hp hne mem slice h v ↦ ?_⟩
  · have hlen := length_flatMap_encode xs
    exact ⟨_, (appendVars_eq_some_iff (by decide)).mpr ⟨rfl, by rwa [List.nil_append, hlen]⟩, hlen,
      fun mem slice h ↦ readsVars_of_holds h⟩
  · rw [x.append_eq, sdsCatLen] at hbytes
    split_ifs at hbytes
    obtain rfl := Option.some.inj hbytes
    exact VarValue.get_cut hp hne h v

/-- Numbers of both widths are read back, and the first byte of the number 300 is not read. -/
theorem readsVars_three :
    ReadsVars [172, 2, 5, 224, 167, 18] ⟨0, 6⟩ [.var32 300, .var64 5, .var64 300000] ∧
      (VarValue.var32 300).get [172] ⟨0, 1⟩ 0 = some (false, ⟨0, 1⟩, 0) := by
  have hlength : (([.var32 300, .var64 5, .var64 300000] : List VarValue).map VarValue.length).sum < 2 ^ 63 := by
    rw [← length_flatMap_encode]
    simp [VarValue.toNat, encode_of_lt, encode_of_le]
  obtain ⟨r, hr, -, hread⟩ := readsVars_appendVars.1 _ hlength
  have hr' : r = [172, 2, 5, 224, 167, 18] := (Option.some.inj hr).symm
  exact ⟨hread _ ⟨0, 6⟩ ⟨by rw [hr']; rfl, [], by rw [hr']; rfl⟩,
    readsVars_appendVars.2 (.var32 300) [172, 2] rfl [172] ⟨[2], rfl⟩ (by decide) [172] ⟨0, 1⟩
      ⟨rfl, [], rfl⟩ 0⟩

end LatteC
