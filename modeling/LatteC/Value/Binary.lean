import LatteC.Foundation.Block
import LatteC.Set.Basic
import LatteC.Value.Basic

/-!
# Values as binaries

`value_get_binary` and `value_set_binary` of `src/value/value.c`. All kinds of values share one union, here
its 16 bytes; a setter writes the bytes of its own member only, and the rest stays as earlier calls left
it. Numbers are kept with the lowest byte first.

A `bool` is one byte, but the binary of a boolean is as long as an `int`. So it has three bytes that do not
belong to the value, and the decoder takes them for a part of it.
-/

namespace LatteC

open Block

/-- A `value_t`. The string is what `sds_value` points to, for as long as the type says that it points to a
string. -/
structure ValueObject where
  type : ValueType
  /-- The union. -/
  bytes : List UInt8
  string : List UInt8

/-- A call of a setter. A pointer is given with what it points to, if that matters; a `long double` is given as
the bytes that the assignment writes, 16 at most. -/
inductive ValueSetter where
  | sds (ptr : UInt64) (s : List UInt8)
  | int64 (l : Int64)
  | uint64 (l : UInt64)
  | longDouble (d : List UInt8)
  | bool (b : Bool)
  | array (ptr : UInt64)
  | map (ptr : UInt64)
  | constantChar (ptr : UInt64) (c : CString)

/-- The assignment of a member of the union. -/
def ValueObject.put (v : ValueObject) (member : List UInt8) : ValueObject :=
  { v with bytes := member ++ v.bytes.drop member.length }

/-- The bytes of a pointer. -/
def pointerBytes (ptr : UInt64) : List UInt8 := leBytes 8 ptr.toNat

/-- `value_new`, on memory that holds anything. -/
def valueNew (garbage : Vector UInt8 16) : ValueObject := ⟨.undefined, garbage.toList, []⟩

/-- `value_clean`, without the release of what the value held. -/
def valueClean (v : ValueObject) : ValueObject :=
  let v := match v.type with
    | .sds | .array | .map => v.put (pointerBytes 0)
    | _ => v
  { v with type := .undefined }

/-- `value_set_sds` and its siblings. -/
def valueSet (v : ValueObject) : ValueSetter → ValueObject
  | .sds ptr s => { (valueClean v).put (pointerBytes ptr) with type := .sds, string := s }
  | .int64 l => { (valueClean v).put (leBytes 8 l.toUInt64.toNat) with type := .int }
  | .uint64 l => { (valueClean v).put (leBytes 8 l.toNat) with type := .uint }
  | .longDouble d => { (valueClean v).put (d.take 16) with type := .double }
  | .bool b => { (valueClean v).put [if b then 1 else 0] with type := .boolean }
  | .array ptr => { (valueClean v).put (pointerBytes ptr) with type := .array }
  | .map ptr => { (valueClean v).put (pointerBytes ptr) with type := .map }
  | .constantChar ptr c =>
    { (valueClean v).put (pointerBytes ptr) with type := .constantChar, string := c.bytes }

/-- `value_get_binary`; `none` is NULL. The other values are unsupported. -/
def valueGetBinary (v : ValueObject) : Option (List UInt8) :=
  match v.type with
  | .constantChar => some v.string
  | .sds => some v.string
  | .int => some (v.bytes.take 8)
  | .uint => some (v.bytes.take 8)
  | .double => some (v.bytes.take 16)
  | .boolean => some (v.bytes.take 4)
  | _ => none

/-- `sds_new_len` with a length that has been an `int`. There is no memory for a negative one. -/
def sdsNewLenInt (data : List UInt8) (len : ℤ) : Option (List UInt8) :=
  if len < 0 then none else if data.length < len then none else some (data.take len.toNat)

/-- `*(T *)data` for a type of `n` bytes. -/
def loadBytes (n : ℕ) (data : List UInt8) : Option (List UInt8) :=
  if data.length < n then none else some (data.take n)

/-- `value_set_binary`, with its result. The new string is at `ptr`. A call that reads behind the data or
runs out of memory does not come back. -/
def valueSetBinary (v : ValueObject) (type : ValueType) (data : List UInt8) (len : ℤ) (ptr : UInt64) :
    Option (ValueObject × ℕ) :=
  match type with
  | .sds => (sdsNewLenInt data len).map fun s ↦ (valueSet v (.sds ptr s), 1)
  | .int => (loadBytes 8 data).map fun b ↦
      (valueSet v (.int64 (UInt64.ofNat (leValue b)).toInt64), 1)
  | .uint => (loadBytes 8 data).map fun b ↦ (valueSet v (.uint64 (UInt64.ofNat (leValue b))), 1)
  | .double => (loadBytes 16 data).map fun b ↦ (valueSet v (.longDouble b), 1)
  | .boolean => (loadBytes 4 data).map fun b ↦ (valueSet v (.bool (decide (leValue b ≠ 0))), 1)
  | _ => some (v, 0)

/-- The value that an object holds: what `value_get_sds`, `value_get_int64`, `value_get_uint64` and
`value_get_bool` return. -/
def ValueObject.content (v : ValueObject) : Option (Value Empty) :=
  match v.type with
  | .sds => some (.sds v.string)
  | .int => some (.int (UInt64.ofNat (leValue (v.bytes.take 8))).toInt64)
  | .uint => some (.uint (UInt64.ofNat (leValue (v.bytes.take 8))))
  | .boolean => some (.boolean (decide (v.bytes.headD 0 ≠ 0)))
  | _ => none

/-- A new object after some calls. -/
def valueHistory (garbage : Vector UInt8 16) (calls : List ValueSetter) : ValueObject :=
  calls.foldl valueSet (valueNew garbage)

/-! ## What is asked of the binaries -/

/-- The binary of `v`, set on another object, gives a value equal to `v`. -/
def BinaryRoundTrip (v other : ValueObject) (ptr : UInt64) : Prop :=
  ∃ data other', valueGetBinary v = some data ∧
    valueSetBinary other v.type data (sdsLenInt data) ptr = some (other', 1) ∧
      v.content ≠ none ∧ other'.content = v.content

/-- The three bytes behind a boolean that is set now. -/
def ValueObject.behindBool (v : ValueObject) : List UInt8 := ((valueClean v).bytes.drop 1).take 3

/-- The condition on the state before the last call, which has to set one of the four kinds. -/
def ValueObject.Faithful (v : ValueObject) : ValueSetter → Prop
  | .sds _ s => s.length < 2 ^ 31
  | .int64 _ => True
  | .uint64 _ => True
  | .bool b => b = true ∨ v.behindBool = [0, 0, 0]
  | _ => False

/-! ## The union -/

section Union

variable {v : ValueObject}

theorem ValueObject.take_put (v : ValueObject) (m : List UInt8) :
    (v.put m).bytes.take m.length = m := List.take_left

theorem length_put {m : List UInt8} (hv : v.bytes.length = 16) (hm : m.length ≤ 16) :
    (v.put m).bytes.length = 16 := by
  rw [ValueObject.put, List.length_append, List.length_drop, hv]
  omega

theorem length_valueClean (hv : v.bytes.length = 16) : (valueClean v).bytes.length = 16 := by
  rw [valueClean]
  cases v.type <;> first | exact hv | exact length_put hv (by rw [pointerBytes, length_leBytes]; omega)

theorem length_valueSet (hv : v.bytes.length = 16) (c : ValueSetter) :
    (valueSet v c).bytes.length = 16 := by
  have hclean := length_valueClean hv
  have hptr : ∀ ptr, (pointerBytes ptr).length ≤ 16 := by
    intro ptr
    rw [pointerBytes, length_leBytes]
    omega
  cases c with
  | sds ptr s => exact length_put hclean (hptr ptr)
  | int64 l => exact length_put hclean (by rw [length_leBytes]; omega)
  | uint64 l => exact length_put hclean (by rw [length_leBytes]; omega)
  | longDouble d => exact length_put hclean (List.length_take_le 16 d)
  | bool b => exact length_put hclean (by simp)
  | array ptr => exact length_put hclean (hptr ptr)
  | map ptr => exact length_put hclean (hptr ptr)
  | constantChar ptr c => exact length_put hclean (hptr ptr)

/-- The union keeps its size. -/
theorem length_valueHistory (garbage : Vector UInt8 16) (calls : List ValueSetter) :
    (valueHistory garbage calls).bytes.length = 16 := by
  rw [valueHistory]
  have hnew : (valueNew garbage).bytes.length = 16 := garbage.length_toList
  generalize valueNew garbage = v at hnew
  induction calls generalizing v with
  | nil => exact hnew
  | cons c calls ih => exact ih _ (length_valueSet hnew c)

end Union

/-! ## One call -/

section Calls

variable (v : ValueObject)

theorem content_sds (ptr : UInt64) (s : List UInt8) :
    (valueSet v (.sds ptr s)).content = some (.sds s) := rfl

@[simp] theorem type_sds (ptr : UInt64) (s : List UInt8) :
    (valueSet v (.sds ptr s)).type = .sds := rfl

@[simp] theorem type_int64 (l : Int64) : (valueSet v (.int64 l)).type = .int := rfl

@[simp] theorem type_uint64 (l : UInt64) : (valueSet v (.uint64 l)).type = .uint := rfl

@[simp] theorem type_bool (b : Bool) : (valueSet v (.bool b)).type = .boolean := rfl

theorem take_int64 (l : Int64) :
    (valueSet v (.int64 l)).bytes.take 8 = leBytes 8 l.toUInt64.toNat := by
  have h := (valueClean v).take_put (leBytes 8 l.toUInt64.toNat)
  rwa [length_leBytes] at h

theorem take_uint64 (l : UInt64) :
    (valueSet v (.uint64 l)).bytes.take 8 = leBytes 8 l.toNat := by
  have h := (valueClean v).take_put (leBytes 8 l.toNat)
  rwa [length_leBytes] at h

theorem leValue_leBytes_uint64 (l : UInt64) : UInt64.ofNat (leValue (leBytes 8 l.toNat)) = l := by
  rw [leValue_leBytes l.toNat_lt, UInt64.ofNat_toNat]

theorem content_int64 (l : Int64) : (valueSet v (.int64 l)).content = some (.int l) := by
  change some (Value.int (UInt64.ofNat (leValue ((valueSet v (.int64 l)).bytes.take 8))).toInt64) = _
  rw [take_int64, leValue_leBytes_uint64, Int64.toInt64_toUInt64]

theorem content_uint64 (l : UInt64) : (valueSet v (.uint64 l)).content = some (.uint l) := by
  change some (Value.uint (UInt64.ofNat (leValue ((valueSet v (.uint64 l)).bytes.take 8)))) = _
  rw [take_uint64, leValue_leBytes_uint64]

theorem content_bool (b : Bool) : (valueSet v (.bool b)).content = some (.boolean b) := by
  cases b <;> rfl

/-- The binary of a boolean takes three bytes along. -/
theorem take_bool (b : Bool) :
    (valueSet v (.bool b)).bytes.take 4 = (if b then 1 else 0) :: v.behindBool := rfl

end Calls

theorem valueGetBinary_sds (v : ValueObject) (ptr : UInt64) (s : List UInt8) :
    valueGetBinary (valueSet v (.sds ptr s)) = some s := rfl

theorem valueGetBinary_int64 (v : ValueObject) (l : Int64) :
    valueGetBinary (valueSet v (.int64 l)) = some (leBytes 8 l.toUInt64.toNat) :=
  congrArg some (take_int64 v l)

theorem valueGetBinary_uint64 (v : ValueObject) (l : UInt64) :
    valueGetBinary (valueSet v (.uint64 l)) = some (leBytes 8 l.toNat) :=
  congrArg some (take_uint64 v l)

theorem valueGetBinary_bool (v : ValueObject) (b : Bool) :
    valueGetBinary (valueSet v (.bool b)) = some ((if b then 1 else 0) :: v.behindBool) := rfl

theorem valueSetBinary_sds (v : ValueObject) (data : List UInt8) (len : ℤ) (ptr : UInt64) :
    valueSetBinary v .sds data len ptr =
      (sdsNewLenInt data len).map fun s ↦ (valueSet v (.sds ptr s), 1) := rfl

theorem valueSetBinary_int (v : ValueObject) (data : List UInt8) (len : ℤ) (ptr : UInt64) :
    valueSetBinary v .int data len ptr = (loadBytes 8 data).map fun b ↦
      (valueSet v (.int64 (UInt64.ofNat (leValue b)).toInt64), 1) := rfl

theorem valueSetBinary_uint (v : ValueObject) (data : List UInt8) (len : ℤ) (ptr : UInt64) :
    valueSetBinary v .uint data len ptr = (loadBytes 8 data).map fun b ↦
      (valueSet v (.uint64 (UInt64.ofNat (leValue b))), 1) := rfl

theorem valueSetBinary_bool (v : ValueObject) (data : List UInt8) (len : ℤ) (ptr : UInt64) :
    valueSetBinary v .boolean data len ptr = (loadBytes 4 data).map fun b ↦
      (valueSet v (.bool (decide (leValue b ≠ 0))), 1) := rfl

/-- A number is 0 if its bytes are. -/
theorem leValue_eq_zero_iff (bs : List UInt8) :
    leValue bs = 0 ↔ bs = List.replicate bs.length 0 := by
  induction bs with
  | nil => exact iff_of_true rfl rfl
  | cons b bs ih =>
    rw [leValue, List.length_cons, List.replicate_succ, List.cons.injEq, ← ih, ← UInt8.toNat_inj]
    have hzero : (0 : UInt8).toNat = 0 := rfl
    omega

section RoundTrips

variable {v other : ValueObject} {ptr : UInt64}

/-- The round trip of an object whose binary and value are known. -/
theorem binaryRoundTrip_iff_set {type : ValueType} {data : List UInt8} {x : Value Empty}
    (htype : v.type = type) (hdata : valueGetBinary v = some data) (hx : v.content = some x) :
    BinaryRoundTrip v other ptr ↔
      ∃ other', valueSetBinary other type data (sdsLenInt data) ptr = some (other', 1) ∧
        other'.content = some x := by
  rw [BinaryRoundTrip, htype, hdata, hx]
  constructor
  · rintro ⟨data', other', heq, hset, -, hcontent⟩
    obtain rfl := Option.some.inj heq
    exact ⟨other', hset, hcontent⟩
  · rintro ⟨other', hset, hcontent⟩
    exact ⟨data, other', rfl, hset, Option.some_ne_none _, hcontent⟩

theorem binaryRoundTrip_sds_iff (p : UInt64) (s : List UInt8) :
    BinaryRoundTrip (valueSet v (.sds p s)) other ptr ↔ s.length < 2 ^ 31 := by
  rw [binaryRoundTrip_iff_set (type_sds v p s) (valueGetBinary_sds v p s) (content_sds v p s)]
  constructor
  · rintro ⟨other', hset, hcontent⟩
    rw [valueSetBinary_sds] at hset
    obtain ⟨t, ht, heq⟩ := Option.map_eq_some_iff.mp hset
    obtain ⟨rfl, -⟩ := Prod.mk.inj heq
    rw [content_sds, Option.some.injEq, Value.sds.injEq] at hcontent
    rw [sdsNewLenInt] at ht
    split_ifs at ht with hneg hlong
    have htake := congrArg List.length (Option.some.inj ht)
    rw [List.length_take, hcontent] at htake
    rw [sdsLenInt] at hneg htake
    omega
  · intro hlen
    have hint : sdsLenInt s = s.length := by
      rw [sdsLenInt]
      omega
    have hnew : sdsNewLenInt s (sdsLenInt s) = some s := by
      rw [hint, sdsNewLenInt, if_neg (by omega), if_neg (lt_irrefl _), Int.toNat_natCast,
        List.take_length]
    refine ⟨valueSet other (.sds ptr s), ?_, content_sds _ _ _⟩
    rw [valueSetBinary_sds, hnew, Option.map_some]

theorem loadBytes_self (bs : List UInt8) : loadBytes bs.length bs = some bs := by
  rw [loadBytes, if_neg (lt_irrefl _), List.take_length]

theorem loadBytes_leBytes (w n : ℕ) : loadBytes w (leBytes w n) = some (leBytes w n) := by
  have h := loadBytes_self (leBytes w n)
  rwa [length_leBytes] at h

theorem binaryRoundTrip_int64 (l : Int64) : BinaryRoundTrip (valueSet v (.int64 l)) other ptr := by
  rw [binaryRoundTrip_iff_set (type_int64 v l) (valueGetBinary_int64 v l) (content_int64 v l)]
  refine ⟨valueSet other (.int64 l), ?_, content_int64 _ _⟩
  rw [valueSetBinary_int, loadBytes_leBytes, Option.map_some, leValue_leBytes_uint64,
    Int64.toInt64_toUInt64]

theorem binaryRoundTrip_uint64 (l : UInt64) :
    BinaryRoundTrip (valueSet v (.uint64 l)) other ptr := by
  rw [binaryRoundTrip_iff_set (type_uint64 v l) (valueGetBinary_uint64 v l)
    (content_uint64 v l)]
  refine ⟨valueSet other (.uint64 l), ?_, content_uint64 _ _⟩
  rw [valueSetBinary_uint, loadBytes_leBytes, Option.map_some, leValue_leBytes_uint64]

theorem ValueObject.length_behindBool (hv : v.bytes.length = 16) : v.behindBool.length = 3 := by
  rw [behindBool, List.length_take, List.length_drop, length_valueClean hv]
  rfl

/-- The three bytes behind a boolean decide what becomes of it. -/
theorem binaryRoundTrip_bool_iff (hv : v.bytes.length = 16) (b : Bool) :
    BinaryRoundTrip (valueSet v (.bool b)) other ptr ↔ b = true ∨ v.behindBool = [0, 0, 0] := by
  have hlength : ((if b then 1 else 0) :: v.behindBool).length = 4 := by
    rw [List.length_cons, ValueObject.length_behindBool hv]
  have hload := loadBytes_self ((if b then 1 else 0) :: v.behindBool)
  rw [hlength] at hload
  have hdecode : decide (leValue ((if b then 1 else 0) :: v.behindBool) ≠ 0) = b ↔
      b = true ∨ v.behindBool = [0, 0, 0] := by
    cases b with
    | true => simp [leValue]
    | false =>
      have hzero := leValue_eq_zero_iff v.behindBool
      rw [ValueObject.length_behindBool hv] at hzero
      simp [leValue, hzero]
  rw [← hdecode, binaryRoundTrip_iff_set (type_bool v b) (valueGetBinary_bool v b)
    (content_bool v b)]
  constructor
  · rintro ⟨other', hset, hcontent⟩
    rw [valueSetBinary_bool, hload, Option.map_some] at hset
    obtain ⟨rfl, -⟩ := Prod.mk.inj (Option.some.inj hset)
    rw [content_bool, Option.some.injEq, Value.boolean.injEq] at hcontent
    exact hcontent
  · intro hb
    refine ⟨valueSet other (.bool b), ?_, content_bool _ _⟩
    rw [valueSetBinary_bool, hload, Option.map_some, hb]

/-- **One call.** The round trip depends on the state before the call for a boolean only. -/
theorem binaryRoundTrip_iff (hv : v.bytes.length = 16) (c : ValueSetter) :
    BinaryRoundTrip (valueSet v c) other ptr ↔ v.Faithful c := by
  cases c with
  | sds p s => exact binaryRoundTrip_sds_iff p s
  | int64 l => exact iff_of_true (binaryRoundTrip_int64 l) trivial
  | uint64 l => exact iff_of_true (binaryRoundTrip_uint64 l) trivial
  | bool b => exact binaryRoundTrip_bool_iff hv b
  | _ => exact iff_of_false (by rintro ⟨_, _, -, -, hne, -⟩; exact hne rfl) not_false

end RoundTrips

/-! ## Equal values -/

/-- The value that a call sets, of the four kinds. -/
def ValueSetter.value : ValueSetter → Option (Value Empty)
  | .sds _ s => some (.sds s)
  | .int64 l => some (.int l)
  | .uint64 l => some (.uint l)
  | .bool b => some (.boolean b)
  | _ => none

theorem content_valueSet (v : ValueObject) (c : ValueSetter) : (valueSet v c).content = c.value := by
  cases c with
  | int64 l => exact content_int64 v l
  | uint64 l => exact content_uint64 v l
  | bool b => exact content_bool v b
  | _ => rfl

/-- The binary of a value, with what stands behind a boolean. -/
def binaryWith (behind : List UInt8) : Value Empty → List UInt8
  | .sds s => s
  | .int l => leBytes 8 l.toUInt64.toNat
  | .uint l => leBytes 8 l.toNat
  | .boolean b => (if b then 1 else 0) :: behind
  | _ => []

theorem valueGetBinary_valueSet {v : ValueObject} {c : ValueSetter} {x : Value Empty}
    (h : c.value = some x) : valueGetBinary (valueSet v c) = some (binaryWith v.behindBool x) := by
  cases c with
  | int64 l =>
    obtain rfl := Option.some.inj h
    exact valueGetBinary_int64 v l
  | uint64 l =>
    obtain rfl := Option.some.inj h
    exact valueGetBinary_uint64 v l
  | sds p s =>
    obtain rfl := Option.some.inj h
    rfl
  | bool b =>
    obtain rfl := Option.some.inj h
    rfl
  | _ => cases h

/-- **Equal values have equal binaries**, except for the three bytes behind a boolean. -/
theorem valueGetBinary_eq_iff {v w : ValueObject} {c d : ValueSetter} {x : Value Empty}
    (hc : c.value = some x) (hd : d.value = some x) :
    valueGetBinary (valueSet v c) = valueGetBinary (valueSet w d) ↔
      ((∃ b, x = .boolean b) → v.behindBool = w.behindBool) := by
  rw [valueGetBinary_valueSet hc, valueGetBinary_valueSet hd, Option.some.injEq]
  cases x with
  | boolean b =>
    rw [binaryWith, binaryWith, List.cons.injEq, and_iff_right rfl]
    exact ⟨fun h _ ↦ h, fun h ↦ h ⟨b, rfl⟩⟩
  | _ =>
    refine iff_of_true rfl fun h ↦ ?_
    obtain ⟨b, hb⟩ := h
    cases hb

/-! ## Histories -/

/-- **Where values survive their binaries.** After any history and a last call, the round trip gives an equal
value if and only if the last call sets a string below 2³¹ bytes, an integer, true, or false with nothing
but zeros in the three bytes behind it. Two objects with equal values, whatever their histories, have equal
binaries if and only if these three bytes are the same, in case of a boolean. -/
theorem value_binary_iff (garbage garbage' : Vector UInt8 16) (calls calls' : List ValueSetter)
    (c c' : ValueSetter) :
    (∀ ptr, BinaryRoundTrip (valueHistory garbage (calls ++ [c])) (valueHistory garbage' calls') ptr ↔
      (valueHistory garbage calls).Faithful c) ∧
    ∀ x, (valueHistory garbage (calls ++ [c])).content = some x →
      (valueHistory garbage' (calls' ++ [c'])).content = some x →
      (valueGetBinary (valueHistory garbage (calls ++ [c])) =
          valueGetBinary (valueHistory garbage' (calls' ++ [c'])) ↔
        ((∃ b, x = .boolean b) →
          (valueHistory garbage calls).behindBool = (valueHistory garbage' calls').behindBool)) := by
  have hlast : ∀ (g : Vector UInt8 16) (cs : List ValueSetter) (d : ValueSetter),
      valueHistory g (cs ++ [d]) = valueSet (valueHistory g cs) d := by
    intro g cs d
    rw [valueHistory, List.foldl_append]
    rfl
  rw [hlast, hlast]
  refine ⟨fun ptr ↦ binaryRoundTrip_iff (length_valueHistory garbage calls) c, fun x hx hx' ↦ ?_⟩
  rw [content_valueSet] at hx hx'
  exact valueGetBinary_eq_iff hx hx'

/-- After the number 256 a false comes back as true, and its binary is not that of a false that follows 0. -/
theorem value_binary_stale :
    ¬BinaryRoundTrip (valueHistory (Vector.replicate 16 0) [.int64 256, .bool false])
        (valueHistory (Vector.replicate 16 0) []) 0 ∧
      (valueHistory (Vector.replicate 16 0) [.int64 256, .bool false]).content =
        (valueHistory (Vector.replicate 16 0) [.int64 0, .bool false]).content ∧
      valueGetBinary (valueHistory (Vector.replicate 16 0) [.int64 256, .bool false]) ≠
        valueGetBinary (valueHistory (Vector.replicate 16 0) [.int64 0, .bool false]) := by
  refine ⟨fun h ↦ ?_, rfl, by decide⟩
  have hfaithful := (binaryRoundTrip_iff
    (length_valueHistory (Vector.replicate 16 0) [.int64 256]) (.bool false)).mp h
  obtain htrue | hbehind := hfaithful
  · exact Bool.false_ne_true htrue
  · exact absurd hbehind (by decide)

/-- Two strings of two histories. -/
theorem value_binary_iff_strings :
    valueGetBinary (valueHistory (Vector.replicate 16 7) ([.int64 256] ++ [.sds 8 [97]])) =
      valueGetBinary (valueHistory (Vector.replicate 16 0) ([] ++ [.sds 16 [97]])) :=
  ((value_binary_iff (Vector.replicate 16 7) (Vector.replicate 16 0) [.int64 256] []
    (.sds 8 [97]) (.sds 16 [97])).2 (.sds [97]) rfl rfl).mpr (by
      rintro ⟨b, hb⟩
      cases hb)

end LatteC
