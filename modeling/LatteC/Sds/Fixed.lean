import LatteC.Foundation.Bits
import LatteC.Sds.Basic

/-!
# Numbers of fixed width

`encode_fixed32`, `encode_fixed64` and their companions, of `src/sds/sds_plugins.c`. The bytes of a number are
put into a buffer on the stack and appended with `sds_cat`, which takes them for a C string. So what is
appended goes up to the first zero byte, be it one of the number or one that stands behind the buffer.
-/

namespace LatteC

open Bits

/-- `strlen` on the memory from a pointer on. Without a zero byte it runs off, which is a fault. -/
def strlen (mem : List UInt8) : Option ℕ := if 0 ∈ mem then some (cString mem).length else none

/-- `sds_cat`. -/
def sdsCat (s t : List UInt8) : Option (List UInt8) :=
  (strlen t).bind fun len ↦ sdsCatLen s (t.take len)

/-- `encode_fixed32`. -/
def encodeFixed32 (value : UInt32) : List UInt8 :=
  [value.toUInt8, (value >>> 8).toUInt8, (value >>> 16).toUInt8, (value >>> 24).toUInt8]

/-- `decode_fixed32`. -/
def decodeFixed32 : (ptr : List UInt8) → Option UInt32
  | b₀ :: b₁ :: b₂ :: b₃ :: _ =>
    some (b₀.toUInt32 ||| b₁.toUInt32 <<< 8 ||| b₂.toUInt32 <<< 16 ||| b₃.toUInt32 <<< 24)
  | _ => none

/-- `sds_append_fixed32`, with what stands behind `buf`. -/
def sdsAppendFixed32 (stack result : List UInt8) (value : UInt32) : Option (List UInt8) :=
  sdsCat result (encodeFixed32 value ++ stack)

/-- `encode_fixed64`. -/
def encodeFixed64 (value : UInt64) : List UInt8 :=
  [value.toUInt8, (value >>> 8).toUInt8, (value >>> 16).toUInt8, (value >>> 24).toUInt8,
    (value >>> 32).toUInt8, (value >>> 40).toUInt8, (value >>> 48).toUInt8, (value >>> 56).toUInt8]

/-- `decode_fixed64`. -/
def decodeFixed64 : (ptr : List UInt8) → Option UInt64
  | b₀ :: b₁ :: b₂ :: b₃ :: b₄ :: b₅ :: b₆ :: b₇ :: _ =>
    some (b₀.toUInt64 ||| b₁.toUInt64 <<< 8 ||| b₂.toUInt64 <<< 16 ||| b₃.toUInt64 <<< 24 |||
      b₄.toUInt64 <<< 32 ||| b₅.toUInt64 <<< 40 ||| b₆.toUInt64 <<< 48 ||| b₇.toUInt64 <<< 56)
  | _ => none

/-- `sds_append_fixed64`, with what stands behind `buf`. -/
def sdsAppendFixed64 (stack result : List UInt8) (value : UInt64) : Option (List UInt8) :=
  sdsCat result (encodeFixed64 value ++ stack)

/-! ## Decoding -/

theorem decodeFixed32_encodeFixed32 (value : UInt32) (rest : List UInt8) :
    decodeFixed32 (encodeFixed32 value ++ rest) = some value := by
  have hlow : ∀ (n : ℕ), n + 8 ≤ 32 →
      value.toNat % 2 ^ n ||| (value.toNat >>> n % 2 ^ 8) <<< n % 2 ^ 32 = value.toNat % 2 ^ (n + 8) :=
    fun n hn ↦ mod_or_shiftLeft_mod value.toNat hn
  refine congrArg some (UInt32.toNat_inj.mp ?_)
  simp only [UInt32.toNat_or, UInt32.toNat_shiftLeft, UInt32.toNat_shiftRight, UInt8.toNat_toUInt32,
    UInt32.toNat_toUInt8]
  change value.toNat % 2 ^ 8 ||| (value.toNat >>> 8 % 2 ^ 8) <<< 8 % 2 ^ 32 |||
    (value.toNat >>> 16 % 2 ^ 8) <<< 16 % 2 ^ 32 ||| (value.toNat >>> 24 % 2 ^ 8) <<< 24 % 2 ^ 32 = _
  rw [hlow 8 (by decide), hlow 16 (by decide), hlow 24 (by decide)]
  exact Nat.mod_eq_of_lt value.toNat_lt

theorem decodeFixed64_encodeFixed64 (value : UInt64) (rest : List UInt8) :
    decodeFixed64 (encodeFixed64 value ++ rest) = some value := by
  have hlow : ∀ (n : ℕ), n + 8 ≤ 64 →
      value.toNat % 2 ^ n ||| (value.toNat >>> n % 2 ^ 8) <<< n % 2 ^ 64 = value.toNat % 2 ^ (n + 8) :=
    fun n hn ↦ mod_or_shiftLeft_mod value.toNat hn
  refine congrArg some (UInt64.toNat_inj.mp ?_)
  simp only [UInt64.toNat_or, UInt64.toNat_shiftLeft, UInt64.toNat_shiftRight, UInt8.toNat_toUInt64,
    UInt64.toNat_toUInt8]
  change value.toNat % 2 ^ 8 ||| (value.toNat >>> 8 % 2 ^ 8) <<< 8 % 2 ^ 64 |||
    (value.toNat >>> 16 % 2 ^ 8) <<< 16 % 2 ^ 64 ||| (value.toNat >>> 24 % 2 ^ 8) <<< 24 % 2 ^ 64 |||
    (value.toNat >>> 32 % 2 ^ 8) <<< 32 % 2 ^ 64 ||| (value.toNat >>> 40 % 2 ^ 8) <<< 40 % 2 ^ 64 |||
    (value.toNat >>> 48 % 2 ^ 8) <<< 48 % 2 ^ 64 ||| (value.toNat >>> 56 % 2 ^ 8) <<< 56 % 2 ^ 64 = _
  rw [hlow 8 (by decide), hlow 16 (by decide), hlow 24 (by decide), hlow 32 (by decide),
    hlow 40 (by decide), hlow 48 (by decide), hlow 56 (by decide)]
  exact Nat.mod_eq_of_lt value.toNat_lt

/-! ## A sequence of numbers -/

/-- A number to append. -/
inductive FixedValue where
  | fixed32 (value : UInt32)
  | fixed64 (value : UInt64)
  deriving DecidableEq

namespace FixedValue

def encode : FixedValue → List UInt8
  | fixed32 value => encodeFixed32 value
  | fixed64 value => encodeFixed64 value

/-- The bytes of the type. -/
def size : FixedValue → ℕ
  | fixed32 _ => 4
  | fixed64 _ => 8

/-- `sds_append_fixed32` or `sds_append_fixed64`. -/
def append (stack result : List UInt8) : FixedValue → Option (List UInt8)
  | fixed32 value => sdsAppendFixed32 stack result value
  | fixed64 value => sdsAppendFixed64 stack result value

/-- A pointer to where the value is decoded. -/
def IsAt (ptr : List UInt8) : FixedValue → Prop
  | fixed32 value => decodeFixed32 ptr = some value
  | fixed64 value => decodeFixed64 ptr = some value

@[simp] theorem length_encode (x : FixedValue) : x.encode.length = x.size := by cases x <;> rfl

theorem append_eq (stack result : List UInt8) (x : FixedValue) :
    x.append stack result = sdsCat result (x.encode ++ stack) := by cases x <;> rfl

theorem isAt_encode (x : FixedValue) (rest : List UInt8) : x.IsAt (x.encode ++ rest) := by
  cases x with
  | fixed32 value => exact decodeFixed32_encodeFixed32 value rest
  | fixed64 value => exact decodeFixed64_encodeFixed64 value rest

end FixedValue

/-- Calls of the append functions, each with what stands behind its buffer: every one succeeds, lengthens the
string by the size of its value and keeps what was there. -/
def AppendsEach : (s : List UInt8) → List (List UInt8 × FixedValue) → (r : List UInt8) → Prop
  | s, [], r => r = s
  | s, (stack, x) :: calls, r =>
    ∃ t, x.append stack s = some t ∧ s <+: t ∧ t.length = s.length + x.size ∧ AppendsEach t calls r

/-- The values stand one behind the other. -/
def DecodesTo : (ptr : List UInt8) → List FixedValue → Prop
  | _, [] => True
  | ptr, x :: xs => x.IsAt ptr ∧ DecodesTo (ptr.drop x.size) xs

/-- The values have been appended and are read back from behind `s`. -/
def FixedAppended (s : List UInt8) (calls : List (List UInt8 × FixedValue)) : Prop :=
  ∃ r, AppendsEach s calls r ∧ DecodesTo (r.drop s.length) (calls.map Prod.snd)

/-- The buffer is a C string of just the bytes of the value. -/
def IsTerminated (call : List UInt8 × FixedValue) : Prop :=
  0 ∉ call.2.encode ∧ call.1.head? = some 0

/-- The bytes of the values. -/
def fixedSize (calls : List (List UInt8 × FixedValue)) : ℕ := (calls.map fun call ↦ call.2.size).sum

/-! ## When it works -/

/-- What `sds_cat` copies has no zero byte. -/
theorem sdsCat_eq_some_iff {s t r : List UInt8} :
    sdsCat s t = some r ↔ 0 ∈ t ∧ s.length + (cString t).length < 2 ^ 63 ∧ r = s ++ cString t := by
  have htake : t.take (cString t).length = cString t :=
    (List.prefix_iff_eq_take.mp (List.takeWhile_prefix _)).symm
  rw [sdsCat, strlen]
  split_ifs with hzero
  · rw [Option.bind_some, htake, sdsCatLen]
    split_ifs with hlen
    · rw [Option.some.injEq, eq_comm]
      exact ⟨fun h ↦ ⟨hzero, hlen, h⟩, fun h ↦ h.2.2⟩
    · exact ⟨fun h ↦ absurd h (by simp), fun h ↦ absurd h.2.1 hlen⟩
  · exact ⟨fun h ↦ absurd h (by simp), fun h ↦ absurd h.1 hzero⟩

/-- The length is right if and only if the buffer is terminated where the value ends. -/
theorem cString_encode_iff {stack : List UInt8} {x : FixedValue} :
    (0 ∈ x.encode ++ stack ∧ (cString (x.encode ++ stack)).length = x.size) ↔
      IsTerminated (stack, x) := by
  rw [← x.length_encode, IsTerminated]
  by_cases hzero : 0 ∈ x.encode
  · -- a zero byte in the value cuts it off
    refine iff_of_false (fun h ↦ ?_) fun h ↦ h.1 hzero
    have hprefix : cString (x.encode ++ stack) <+: x.encode ++ stack := List.takeWhile_prefix _
    have heq : cString (x.encode ++ stack) = x.encode :=
      (List.prefix_of_prefix_length_le hprefix (List.prefix_append _ _) h.2.le).eq_of_length h.2
    have hnot := zero_notMem_cString (x.encode ++ stack)
    rw [heq] at hnot
    exact hnot hzero
  · have hcString : cString (x.encode ++ stack) = x.encode ++ cString stack := by
      rw [cString, List.takeWhile_append_of_pos]
      · rfl
      · exact fun c hc ↦ decide_eq_true fun h ↦ hzero (h ▸ hc)
    rw [hcString, List.mem_append, or_iff_right hzero, List.length_append, and_iff_right hzero]
    cases stack with
    | nil => exact iff_of_false (fun h ↦ absurd h.1 List.not_mem_nil) (by simp)
    | cons c cs =>
      rw [cString, List.head?_cons, Option.some.injEq]
      by_cases hc : c = 0
      · simp [hc]
      · rw [List.takeWhile_cons_of_pos (by simpa using hc)]
        refine iff_of_false (fun h ↦ ?_) hc
        have hlen := h.2
        rw [List.length_cons] at hlen
        omega

theorem cString_encode {stack : List UInt8} {x : FixedValue} (h : IsTerminated (stack, x)) :
    cString (x.encode ++ stack) = x.encode := by
  have hprefix : cString (x.encode ++ stack) <+: x.encode ++ stack := List.takeWhile_prefix _
  have hlen := (cString_encode_iff.mpr h).2
  rw [← x.length_encode] at hlen
  exact (List.prefix_of_prefix_length_le hprefix (List.prefix_append _ _) hlen.le).eq_of_length hlen

/-- One append. -/
theorem append_iff {stack s t : List UInt8} {x : FixedValue} :
    (x.append stack s = some t ∧ s <+: t ∧ t.length = s.length + x.size) ↔
      IsTerminated (stack, x) ∧ s.length + x.size < 2 ^ 63 ∧ t = s ++ x.encode := by
  rw [FixedValue.append_eq, sdsCat_eq_some_iff]
  constructor
  · rintro ⟨⟨hzero, hlt, rfl⟩, -, hlen⟩
    rw [List.length_append, Nat.add_left_cancel_iff] at hlen
    have hterminated := cString_encode_iff.mp ⟨hzero, hlen⟩
    exact ⟨hterminated, hlen ▸ hlt, by rw [cString_encode hterminated]⟩
  · rintro ⟨hterminated, hlt, rfl⟩
    have hlen := cString_encode_iff.mpr hterminated
    refine ⟨⟨hlen.1, by rwa [hlen.2], by rw [cString_encode hterminated]⟩, List.prefix_append _ _, ?_⟩
    rw [List.length_append, x.length_encode]

/-- All appends. -/
theorem appendsEach_iff {calls : List (List UInt8 × FixedValue)} {s r : List UInt8} :
    AppendsEach s calls r ↔ (∀ call ∈ calls, IsTerminated call) ∧
      (calls ≠ [] → s.length + fixedSize calls < 2 ^ 63) ∧
        r = s ++ calls.flatMap fun call ↦ call.2.encode := by
  induction calls generalizing s with
  | nil =>
    rw [AppendsEach, List.flatMap_nil, List.append_nil]
    exact ⟨fun h ↦ ⟨by simp, fun h ↦ absurd rfl h, h⟩, fun h ↦ h.2.2⟩
  | cons call calls ih =>
    obtain ⟨stack, x⟩ := call
    have hsize : fixedSize ((stack, x) :: calls) = x.size + fixedSize calls := rfl
    rw [AppendsEach, List.forall_mem_cons, List.flatMap_cons, hsize]
    constructor
    · rintro ⟨t, happend, hprefix, hlen, hrest⟩
      obtain ⟨hterminated, hlt, rfl⟩ := append_iff.mp ⟨happend, hprefix, hlen⟩
      obtain ⟨hall, hfits, rfl⟩ := ih.mp hrest
      refine ⟨⟨hterminated, hall⟩, fun _ ↦ ?_, List.append_assoc _ _ _⟩
      rw [hlen] at hfits
      by_cases hnil : calls = []
      · rw [hnil]
        exact hlt
      · have := hfits hnil
        omega
    · rintro ⟨⟨hterminated, hall⟩, hfits, rfl⟩
      have hlt := hfits (List.cons_ne_nil _ _)
      have hlt' : s.length + x.size < 2 ^ 63 := by omega
      obtain ⟨happend, hprefix, hlen⟩ := append_iff.mpr ⟨hterminated, hlt', rfl⟩
      refine ⟨_, happend, hprefix, hlen, ih.mpr ⟨hall, fun _ ↦ ?_, ?_⟩⟩
      · rw [hlen]
        omega
      · exact (List.append_assoc _ _ _).symm

theorem decodesTo_flatMap (xs : List FixedValue) : DecodesTo (xs.flatMap FixedValue.encode) xs := by
  induction xs with
  | nil => trivial
  | cons x xs ih =>
    refine ⟨x.isAt_encode _, ?_⟩
    rw [List.flatMap_cons, List.drop_left' x.length_encode]
    exact ih

/-- **Numbers of fixed width** are appended and read back if and only if none of their bytes is zero and a zero
byte stands behind the buffer in every call, as long as the string fits into memory. -/
theorem fixedAppended_iff (s : List UInt8) (calls : List (List UInt8 × FixedValue)) :
    FixedAppended s calls ↔ (∀ call ∈ calls, IsTerminated call) ∧
      (calls ≠ [] → s.length + fixedSize calls < 2 ^ 63) := by
  constructor
  · rintro ⟨r, heach, -⟩
    obtain ⟨hall, hfits, -⟩ := appendsEach_iff.mp heach
    exact ⟨hall, hfits⟩
  · rintro ⟨hall, hfits⟩
    refine ⟨_, appendsEach_iff.mpr ⟨hall, hfits, rfl⟩, ?_⟩
    rw [List.drop_left, ← List.flatMap_map]
    exact decodesTo_flatMap (calls.map Prod.snd)

/-- Of the number 1 only one byte is appended, whatever stands behind the buffer. -/
theorem not_fixedAppended_one : ¬FixedAppended [] [([0], .fixed32 1)] := by
  rintro ⟨r, ⟨t, happend, -, hlen, -⟩, -⟩
  have ht : t = [1] := (Option.some.inj happend).symm
  rw [ht] at hlen
  exact absurd hlen (by decide)

end LatteC
